import CallByNeed.Store
import CallByNeed.Program.Statement
import CallByNeed.Text.Quoted
import CallByNeed.Token

/-!
# Inspection

How tokens, expressions, values and environments are described to someone who looks into a running
session. Every description names the sort of thing and its parts.
-/

namespace CallByNeed

/-- The name of a symbol under inspection. -/
def Symbol.label : Symbol → String
  | let_ => "LET"
  | true_ => "TRUE"
  | false_ => "FALSE"
  | consoleLog => "CONSOLE_LOG"
  | inspectExpanded => "INSPECT_EXPANDED"
  | strictEqual => "STRICT_EQUAL"
  | strictNotEqual => "STRICT_NOT_EQUAL"
  | .and => "AND"
  | .or => "OR"
  | lessOrEqual => "LESS_THAN_OR_EQUAL"
  | greaterOrEqual => "GREATER_THAN_OR_EQUAL"
  | arrow => "ARROW"
  | assign => "ASSIGNMENT"
  | .not => "NOT"
  | minus => "MINUS"
  | plus => "PLUS"
  | asterisk => "ASTERISK"
  | slash => "SLASH"
  | percent => "PERCENT"
  | less => "LESS_THAN"
  | greater => "GREATER_THAN"
  | question => "QUESTION"
  | colon => "COLON"
  | leftParen => "LEFT_PAREN"
  | rightParen => "RIGHT_PAREN"
  | semicolon => "SEMICOLON"

/-- The symbol with the given name. -/
def Symbol.ofLabel? (label : String) : Option Symbol :=
  (Symbol.literal ++ Symbol.reserved).find? fun s => s.label == label

namespace TokenKind

/-- The name of a sort of token under inspection. -/
def label : TokenKind → String
  | number _ => "NUMBER"
  | string _ => "STRING"
  | identifier _ => "IDENTIFIER"
  | symbol s => s.label
  | eof => "EOF"

/-- What a sort of token is called in plain words, or how it is written. -/
def sort : TokenKind → String
  | number _ => "number"
  | string _ => "string"
  | identifier _ => "identifier"
  | symbol s => s.text
  | eof => "end of input"

/-- What a token carries. -/
def payload? : TokenKind → Option String
  | number x => some (Number.describe x)
  | string s => some (Text.quoted s)
  | identifier x => some (Text.quoted x)
  | symbol _ | eof => none

end TokenKind

/-- A token under inspection. -/
def Token.inspect (t : Token) : String :=
  let payload := (t.kind.payload?.map fun p => ", " ++ p).getD ""
  "Token(" ++ t.kind.label ++ payload ++ " @ " ++ t.location.toText ++ ")"

/-- The name of a family of operators under inspection. -/
def BinaryOp.Family.label : BinaryOp.Family → String
  | disjunction => "LogicalOr"
  | conjunction => "LogicalAnd"
  | equality => "Equality"
  | relation => "Relational"
  | addition => "Additive"
  | multiplication => "Multiplicative"

/-- All families of operators. -/
def BinaryOp.Family.all : List BinaryOp.Family :=
  [.disjunction, .conjunction, .equality, .relation, .addition, .multiplication]

/-- A description: the name of a sort of thing, and its parts with their names. -/
def describe (label : String) (parts : List (String × String)) : String :=
  label ++ "(" ++ ", ".intercalate (parts.map fun p => p.1 ++ "=" ++ p.2) ++ ")"

/-- A truth value under inspection. -/
def describeBool (b : Bool) : String :=
  if b then "True" else "False"

/-- A constant under inspection. -/
def Constant.inspect : Constant → String
  | number x => describe "NumberValue" [("value", Number.describe x)]
  | string s => describe "StringValue" [("value", Text.quoted s)]
  | boolean b => describe "BooleanValue" [("value", describeBool b)]

namespace Expr

/-- The name of a sort of expression under inspection. -/
def label : Expr → String
  | literal _ _ => "Literal"
  | name _ _ => "Identifier"
  | paren _ _ => "Parenthesized"
  | arrow _ _ _ => "Arrow"
  | call _ _ _ => "Call"
  | unary _ _ _ => "Unary"
  | binary op _ _ _ => op.family.label
  | cond _ _ _ _ => "Conditional"

/-- An expression under inspection, without the places it was read from. -/
def inspect (e : Expr) : String :=
  match e with
  | literal c _ => describe e.label [("value", c.inspect)]
  | name x _ => describe e.label [("name", Text.quoted x)]
  | paren i _ => describe e.label [("expression", i.inspect)]
  | arrow x b _ => describe e.label [("parameter", Text.quoted x), ("body", b.inspect)]
  | call f a _ => describe e.label [("callee", f.inspect), ("argument", a.inspect)]
  | unary op o _ => describe e.label [("operator", Text.quoted op.text), ("operand", o.inspect)]
  | binary op l r _ =>
    describe e.label
      [("operator", Text.quoted op.text), ("left", l.inspect), ("right", r.inspect)]
  | cond c t f _ =>
    describe e.label
      [("condition", c.inspect), ("consequent", t.inspect), ("alternate", f.inspect)]

end Expr

/-- The content of an object under inspection. -/
def Content.inspect : Content → String
  | number x => (Constant.number x).inspect
  | string s => (Constant.string s).inspect
  | boolean b => (Constant.boolean b).inspect
  | function x body _ =>
    describe "FunctionValue" [("parameter", Text.quoted x), ("body", body.inspect)]
  | nothing => "None"

/-- What sort of object holds the content. -/
def Content.label : Content → String
  | number _ => "NumberValue"
  | string _ => "StringValue"
  | boolean _ => "BooleanValue"
  | function _ _ _ => "FunctionValue"
  | nothing => "NoneType"

namespace Value

/-- A value under inspection, following at most `fuel` results of thunks. -/
def inspectBy (σ : Store) : Nat → Value → Option String
  | _, object o => some o.content.inspect
  | 0, thunk _ => none
  | fuel + 1, thunk a =>
    let shown := (σ.cell a).expr.render
    match (σ.cell a).memo with
    | none => some ("Thunk(" ++ shown ++ ", unforced)")
    | some v => (inspectBy σ fuel v).map fun memo => "Thunk(" ++ shown ++ ", memo=" ++ memo ++ ")"

/-- A value under inspection: an object, or a thunk with the result it has. `none` if the results
lead in a circle, which is so if more of them follow each other than there are thunks. -/
def inspect (σ : Store) (v : Value) : Option String :=
  v.inspectBy σ (σ.cells.size + 1)

/-- The text that is output for a value. -/
def display : Value → String
  | object o => o.content.display
  | thunk _ => "[Unevaluated Thunk]"

/-- What kind of value something is, in words, unless it is absent. -/
def kindText? : Value → Option String
  | object o => o.content.kind?.map Kind.text
  | thunk _ => some "thunk"

/-- Whether two values are one and the same. -/
def same : Value → Value → Bool
  | object o, object p => o.identity == p.identity
  | thunk a, thunk b => a == b
  | _, _ => false

/-- Whether two values are the same or hold the same number, text or truth value. -/
def equal (v w : Value) : Bool :=
  v.same w ||
    match v, w with
    | object ⟨_, .number x⟩, object ⟨_, .number y⟩ => x == y
    | object ⟨_, .string s⟩, object ⟨_, .string t⟩ => s == t
    | object ⟨_, .boolean a⟩, object ⟨_, .boolean b⟩ => a == b
    | _, _ => false

end Value

namespace Store

/-- The names bound in a frame, sorted. -/
def sortedNames (σ : Store) (f : FrameId) : List String :=
  (σ.frame f).names.mergeSort fun x y => !decide (y < x)

/-- An environment under inspection: the names of its innermost frame and how many frames are
around that. -/
def inspectEnv (σ : Store) (env : Env) : String :=
  "Environment([" ++ ", ".intercalate ((σ.sortedNames env.frame).map Text.quoted) ++
    "], depth=" ++ env.outer.length.repr ++ ")"

/-- How often an operator of a family was applied. -/
def combinedCount (σ : Store) (f : BinaryOp.Family) : Nat :=
  σ.log.countP fun
    | .combined op _ _ => op.family == f
    | _ => false

/-- How often the result of a thunk was kept. -/
def filledCount (σ : Store) : Nat :=
  σ.log.countP fun
    | .filled _ => true
    | _ => false

end Store

end CallByNeed
