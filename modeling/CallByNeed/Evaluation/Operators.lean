import CallByNeed.Store

/-!
# Operators

What the operators of the language compute from evaluated operands, and why they may refuse.
-/

namespace CallByNeed

/-- Why evaluation fails by the rules of the language. -/
inductive EvalCause where
  /-- A name stands for nothing. -/
  | undefined (name : String)
  /-- Something other than a function is called. -/
  | notFunction (found : Kind)
  /-- The operator takes a truth value. -/
  | needsBoolean (op : UnaryOp) (found : Kind)
  /-- The operator takes a number. -/
  | needsNumber (op : UnaryOp) (found : Kind)
  /-- The operator takes two truth values. -/
  | needsBooleans (op : BinaryOp) (found : Kind)
  /-- The operator takes two numbers. -/
  | needsNumbers (op : BinaryOp) (found : Kind)
  /-- The operator takes two numbers, or a text and anything. -/
  | needsNumbersOrStrings (op : BinaryOp) (left right : Kind)
  /-- A number is divided by zero. -/
  | divisionByZero
  /-- A remainder by zero is asked for. -/
  | moduloByZero
  /-- A condition is no truth value. -/
  | condition
  /-- A thunk is needed to evaluate itself. -/
  | circular
  /-- A name is declared twice. -/
  | taken (name : String)
deriving DecidableEq, Repr

/-- The message for a cause. -/
def EvalCause.message : EvalCause → String
  | undefined x => "Undefined variable: " ++ x
  | notFunction k => "Cannot call non-function (" ++ k.text ++ ")"
  | needsBoolean op k => "'" ++ op.text ++ "' operator requires a boolean, got " ++ k.text
  | needsNumber op k => "'" ++ op.text ++ "' operator requires a number, got " ++ k.text
  | needsBooleans op k => "'" ++ op.text ++ "' operator requires booleans, got " ++ k.text
  | needsNumbers op k => "'" ++ op.text ++ "' operator requires numbers, got " ++ k.text
  | needsNumbersOrStrings op k l =>
    "'" ++ op.text ++ "' operator requires numbers or strings, got " ++ k.text ++ " and " ++ l.text
  | divisionByZero => "Division by zero"
  | moduloByZero => "Modulo by zero"
  | condition => "Condition must be a boolean"
  | circular => "Circular definition: value depends on itself"
  | taken x =>
    "Cannot use 'let " ++ x ++ "' - the name '" ++ x ++
      "' is already taken. Each name can only be defined once."

/-- Why an operator gives no result. -/
inductive Refusal where
  /-- The rules of the language forbid it. -/
  | cause (cause : EvalCause)
  /-- There is no result and no rule says so: the remainder of an infinite number. -/
  | domain
  /-- An operand is refused for its kind, but it is absent and has none. -/
  | unnamed
  /-- Both operands are absent, so that there is nothing to compare. -/
  | incomparable
deriving DecidableEq, Repr

/-- The refusal of an operand for its kind. -/
def Refusal.ofKind (cause : Kind → EvalCause) (c : Content) : Refusal :=
  match c.kind? with
  | some k => .cause (cause k)
  | none => .unnamed

/-- The result of an operator before its operand. -/
def UnaryOp.apply : UnaryOp → Content → Except Refusal Content
  | not, .boolean b => .ok (.boolean !b)
  | not, c => .error (.ofKind (.needsBoolean not) c)
  | negate, .number x => .ok (.number (-x))
  | negate, c => .error (.ofKind (.needsNumber negate) c)

namespace BinaryOp

/-- Both operands as numbers. If neither is one, the left one is reported. -/
def numbers (op : BinaryOp) : Content → Content → Except Refusal (Float × Float)
  | .number x, .number y => .ok (x, y)
  | .number _, c => .error (.ofKind (.needsNumbers op) c)
  | c, _ => .error (.ofKind (.needsNumbers op) c)

/-- Both operands as truth values. -/
def booleans (op : BinaryOp) : Content → Content → Except Refusal (Bool × Bool)
  | .boolean a, .boolean b => .ok (a, b)
  | .boolean _, c => .error (.ofKind (.needsBooleans op) c)
  | c, _ => .error (.ofKind (.needsBooleans op) c)

/-- Whether two objects are equal: a function equals only itself, and other values are compared by
what they hold. -/
def areEqual (l r : Object) : Except Refusal Bool :=
  match l.content, r.content with
  | .number x, .number y => .ok (x == y)
  | .string s, .string t => .ok (s == t)
  | .boolean a, .boolean b => .ok (a == b)
  | .function _ _ _, .function _ _ _ => .ok (l.identity == r.identity)
  | .nothing, .nothing => .error .incomparable
  | _, _ => .ok false

/-- The sum of two numbers, or the joined texts of both operands if one is a text. -/
def sum : Content → Content → Except Refusal Content
  | .string s, c => .ok (.string (s ++ c.display))
  | c, .string s => .ok (.string (c.display ++ s))
  | .number x, .number y => .ok (.number (x + y))
  | c, d =>
    match c.kind?, d.kind? with
    | some k, some l => .error (.cause (.needsNumbersOrStrings add k l))
    | _, _ => .error .unnamed

/-- The quotient of two numbers. -/
def quotient (x y : Float) : Except Refusal Content :=
  if y == 0 then .error (.cause .divisionByZero) else .ok (.number (x / y))

/-- The remainder of two numbers, which has the sign of the first. -/
def remainder (x y : Float) : Except Refusal Content :=
  if y == 0 then .error (.cause .moduloByZero)
  else
    match Binary64.remainder? x y with
    | some z => .ok (.number z)
    | none => .error .domain

/-- The result of an operator between two operands. -/
def combine (op : BinaryOp) (l r : Object) : Except Refusal Content :=
  let compare (test : Float → Float → Bool) : Except Refusal Content :=
    (op.numbers l.content r.content).map fun (x, y) => .boolean (test x y)
  let compute (f : Float → Float → Except Refusal Content) : Except Refusal Content :=
    (op.numbers l.content r.content).bind fun (x, y) => f x y
  match op with
  | or => (op.booleans l.content r.content).map fun (a, b) => .boolean (a || b)
  | and => (op.booleans l.content r.content).map fun (a, b) => .boolean (a && b)
  | equal => (areEqual l r).map .boolean
  | notEqual => (areEqual l r).map fun b => .boolean !b
  | less => compare fun x y => x < y
  | lessOrEqual => compare fun x y => x ≤ y
  | greater => compare fun x y => x > y
  | greaterOrEqual => compare fun x y => x ≥ y
  | add => sum l.content r.content
  | subtract => compute fun x y => .ok (.number (x - y))
  | multiply => compute fun x y => .ok (.number (x * y))
  | divide => compute quotient
  | modulo => compute remainder

/-- The left operand that decides the result of an operator by itself. -/
def decisive? : BinaryOp → Option Bool
  | or => some true
  | and => some false
  | _ => none

end BinaryOp

end CallByNeed
